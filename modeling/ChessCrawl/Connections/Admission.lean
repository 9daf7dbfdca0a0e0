import ChessCrawl.Lib.Run
import Mathlib.Data.List.Basic
import Mathlib.Logic.Function.Basic
import Mathlib.Tactic.Common

/-! PostgreSQL sessions of one process: `SessionAdmission` and `SessionPermit`, with `connect` and `Connection.close`
around them. Threads step one at a time; what a thread does under a lock without waiting is one step. -/
namespace ChessCrawl.Connections
open ChessCrawl.Lib
set_option autoImplicit false

/-- A `SessionPermit` and the connection that it is attached to. -/
structure Permit where
  /-- The native session is open. -/
  native : Bool
  /-- `connect` has handed the connection out. -/
  connected : Bool
  /-- Who holds `_session_close_lock`. -/
  closeLock : Option Nat
  /-- Who holds `_lock` of the permit. -/
  lock : Option Nat
  released : Bool
deriving DecidableEq, Repr

def Permit.fresh : Permit := ⟨false, false, none, none, false⟩

/-- `_active` counts the permit. -/
def Permit.outstanding (q : Permit) : Bool := !q.released || q.lock.isSome

/-- Back out of `Connection.close`. -/
def Permit.leave (q : Permit) (closer : Bool) : Permit :=
  { q with closeLock := if closer then none else q.closeLock }

/-- Where a thread is, named by what its next step does; `closer` is a release from `Connection.close`. -/
inductive Pc
  | entering
  | waiting
  | timedOut
  | connecting (p : Nat)
  | configuring (p : Nat)
  | closing (p : Nat)
  | disconnecting (p : Nat)
  | releasing (p : Nat) (closer : Bool)
  | returning (p : Nat) (closer : Bool)
deriving DecidableEq, Repr

/-- `waiters` is the queue of the condition, `woken` are the callers whose waiter a `notify` has released, and `misused`
is the error of a release without ownership. -/
structure State where
  active : Nat
  waiters : List Nat
  woken : List Nat
  permits : List Permit
  threads : Nat → Option Pc
  misused : Bool

namespace State

def go (s : State) (n : Nat) (pc : Option Pc) : State := { s with threads := Function.update s.threads n pc }

def set (s : State) (p : Nat) (q : Permit) : State := { s with permits := s.permits.set p q }

/-- `_active += 1`, and the new permit. -/
def grant (s : State) (n : Nat) : State :=
  { s with
    active := s.active + 1
    permits := s.permits ++ [Permit.fresh] }.go n (some (.connecting s.permits.length))

def wait (s : State) (n : Nat) : State := { s with waiters := s.waiters ++ [n] }.go n (some .waiting)

/-- The predicate of `wait_for`; `late` says that no time is left, which raises `OperationalError`. -/
def check (s : State) (limit n : Nat) (late : Bool) : State :=
  if s.active < limit then s.grant n else if late then s.go n none else s.wait n

def notify (s : State) : State :=
  match s.waiters with
  | [] => s
  | n :: rest => { s with waiters := rest, woken := s.woken ++ [n] }

/-- `SessionAdmission.release` -/
def giveBack (s : State) : State :=
  if s.active = 0 then { s with misused := true } else { s with active := s.active - 1 }.notify

/-- One step of a thread; `answer` is an outcome that the code does not decide. -/
def advance (s : State) (limit n : Nat) (answer : Bool) : Pc → Option State
  | .entering => some (s.check limit n false)
  | .waiting => if n ∈ s.woken then some (check { s with woken := s.woken.erase n } limit n answer) else none
  | .timedOut =>
    some (check { s with waiters := s.waiters.erase n, woken := s.woken.erase n } limit n answer)
  | .connecting p => (s.permits[p]?).map fun q =>
    if answer then (s.set p { q with native := true }).go n (some (.configuring p))
    else s.go n (some (.releasing p false))
  | .configuring p => (s.permits[p]?).map fun q =>
    if answer then (s.set p { q with connected := true }).go n none else s.go n (some (.closing p))
  | .closing p => (s.permits[p]?).bind fun q =>
    if q.closeLock.isSome then none
    else some ((s.set p { q with closeLock := some n }).go n (some (.disconnecting p)))
  | .disconnecting p => (s.permits[p]?).map fun q =>
    (s.set p { q with native := false }).go n (some (.releasing p true))
  | .releasing p closer => (s.permits[p]?).bind fun q =>
    if q.lock.isSome then none
    else if q.released then some ((s.set p (q.leave closer)).go n none)
    else some ((s.set p { q with lock := some n, released := true }).go n (some (.returning p closer)))
  | .returning p closer => (s.permits[p]?).map fun q =>
    (s.giveBack.set p { q.leave closer with lock := none }).go n none

end State

/-- `timeout` is the waiter's timer, and `lost` the end of a native session from elsewhere. -/
inductive Event
  | connect (n : Nat)
  | close (n p : Nat)
  | step (n : Nat) (answer : Bool)
  | timeout (n : Nat)
  | lost (p : Nat)
deriving DecidableEq, Repr

def State.step (limit : Nat) (s : State) : Event → Option State
  | .connect n => if (s.threads n).isNone then some (s.go n (some .entering)) else none
  | .close n p =>
    if (s.threads n).isNone ∧ (s.permits[p]?).any Permit.connected then some (s.go n (some (.closing p))) else none
  | .step n answer => (s.threads n).bind (s.advance limit n answer)
  | .timeout n => if s.threads n = some .waiting then some (s.go n (some .timedOut)) else none
  | .lost p => (s.permits[p]?).map fun q => s.set p { q with native := false }

/-- The sessions of a process that admits `limit` of them. -/
def sessions (limit : Nat) : System State Event where
  init s := s = ⟨0, [], [], [], fun _ => none, false⟩
  step := State.step limit

end ChessCrawl.Connections
