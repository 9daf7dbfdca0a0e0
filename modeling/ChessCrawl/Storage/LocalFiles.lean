import ChessCrawl.Lib.Disk
import ChessCrawl.Lib.Run
import ChessCrawl.Storage.Objects

/-! `LocalObjectStore`, one system call after the other, on a disk that may lose its power. The names of temporary files
are left out, since no key has one; the parent of the configured directory is there and durable. -/
namespace ChessCrawl.Storage.LocalStore
open ChessCrawl.Lib
set_option autoImplicit false

abbrev Path := List String

abbrev Files := Disk ObjectKey String Bytes

/-- Two digits and the whole hash, without `sha256:`. -/
def fanOut (storedHash : String) : String := String.ofList ((storedHash.toList.drop 7).take 2)

/-- The directory of `_path`, from the configured one on; `hashed` is the digest of a workspace in `artifact_prefix`. -/
def directory (root : String) (hashed : String → String) : ObjectKey → Path
  | .source h => [root, "sha256", fanOut h]
  | .artifact w j attempt h =>
    [root, "artifacts", hashed w, toString j, "attempt-" ++ toString attempt, "sha256", fanOut h]

/-- A call of `put`; `since` counts the deletions of its key before it. -/
structure Put where
  key : ObjectKey
  body : Bytes
  since : Nat
deriving DecidableEq, Repr

/-- Where a thread is, named by its next system call. -/
inductive Pc
  | making (p : Put) (todo : List Path)
  | creating (p : Put)
  | writing (p : Put) (inode : Nat)
  | flushing (p : Put) (inode : Nat)
  | linking (p : Put) (inode : Nat)
  | comparing (p : Put)
  | matching (p : Put) (inode : Nat)
  | syncing (p : Put) (todo : List Path)
  | opening (key : ObjectKey) (expectedSize : Nat)
  | reading (key : ObjectKey) (expectedSize inode : Nat)
  | unlinking (key : ObjectKey)
deriving DecidableEq, Repr

/-- `supplied` are the bodies of the calls, `acknowledged` the calls that have returned, and `answers` what reads have. -/
structure State where
  files : Files
  threads : Nat → Option Pc
  deletes : ObjectKey → Nat
  supplied : List (ObjectKey × Bytes)
  acknowledged : List Put
  answers : List (ObjectKey × Nat × Bytes)

/-- The bytes of `read`: at most one more than expected is read, and the size must fit. -/
def sized (expectedSize : Nat) (content : Bytes) : Option Bytes :=
  let body := content.take (expectedSize + 1)
  if body.length ≠ expectedSize then none else some body

namespace State

def go (s : State) (i : Nat) (pc : Option Pc) : State := { s with threads := Function.update s.threads i pc }

def on (s : State) (files : Files) : State := { s with files := files }

/-- `path.parent`, then its parents up to the one of the configured directory. -/
def toSync (place : ObjectKey → Path) (p : Put) : List Path := (place p.key).inits.reverse

/-- One step of a thread. `upTo` is how much of a body has been written; no thread means that the call is over. -/
def advance (place : ObjectKey → Path) (s : State) (i upTo : Nat) : Pc → State
  | .making p [] => s.go i (some (.creating p))
  | .making p (d :: todo) =>
    if s.files.dirs d.dropLast then (s.on (s.files.mkdir d)).go i (some (.making p todo)) else s.go i none
  | .creating p =>
    if s.files.dirs (place p.key) then (s.on (s.files.create [])).go i (some (.writing p s.files.inodes))
    else s.go i none
  | .writing p n =>
    let written := p.body.take upTo
    (s.on (s.files.write n written)).go i
      (some (if written.length = p.body.length then .flushing p n else .writing p n))
  | .flushing p n => (s.on (s.files.fsync n)).go i (some (.linking p n))
  | .linking p n =>
    match s.files.files p.key with
    | some _ => s.go i (some (.comparing p))
    | none =>
      if s.files.dirs (place p.key) then
        (s.on (s.files.setName p.key (some n))).go i (some (.syncing p (toSync place p)))
      else s.go i none
  | .comparing p => s.go i ((s.files.files p.key).map (.matching p))
  | .matching p n =>
    s.go i (if sized p.body.length (s.files.content n) = some p.body then some (.syncing p (toSync place p)) else none)
  | .syncing p (d :: todo) => (s.on (s.files.syncDir place d)).go i (some (.syncing p todo))
  | .syncing p [] => { s with acknowledged := s.acknowledged ++ [p] }.go i none
  | .opening key size => s.go i ((s.files.files key).map (.reading key size))
  | .reading key size n =>
    match sized size (s.files.content n) with
    | none => s.go i none
    | some body => { s with answers := s.answers ++ [(key, size, body)] }.go i none
  | .unlinking key =>
    { s.on (s.files.setName key none) with
      deletes := Function.update s.deletes key (s.deletes key + 1) }.go i none

end State

/-- `fail` is an error of a system call, and `crash` the loss of the power with all threads. -/
inductive Event
  | put (i : Nat) (key : ObjectKey) (body : Bytes)
  | read (i : Nat) (key : ObjectKey) (expectedSize : Nat)
  | delete (i : Nat) (key : ObjectKey)
  | step (i upTo : Nat)
  | fail (i : Nat)
  | crash (keep : Path → Bool) (pick : ObjectKey → Nat) (garbage : Nat → Bytes)

def State.step (place : ObjectKey → Path) (s : State) : Event → Option State
  | .put i key body =>
    if (s.threads i).isNone then
      some ({ s with supplied := s.supplied ++ [(key, body)] }.go i
        (some (.making ⟨key, body, s.deletes key⟩ (place key).inits)))
    else none
  | .read i key size => if (s.threads i).isNone then some (s.go i (some (.opening key size))) else none
  | .delete i key => if (s.threads i).isNone then some (s.go i (some (.unlinking key))) else none
  | .step i upTo => (s.threads i).map (s.advance place i upTo)
  | .fail i => if (s.threads i).isSome then some (s.go i none) else none
  | .crash keep pick garbage =>
    some { s with
      files := s.files.crash place keep pick garbage
      threads := fun _ => none }

/-- A disk without the configured directory. -/
def blank : Files :=
  { dirs := fun d => d = []
    dirsKept := fun d => d = []
    files := fun _ => none
    filesKept := fun _ => [none]
    content := fun _ => []
    contentKept := fun _ => true
    inodes := 0 }

def localStore (place : ObjectKey → Path) : System State Event where
  init s := s = ⟨blank, fun _ => none, fun _ => 0, [], [], []⟩
  step := State.step place

end ChessCrawl.Storage.LocalStore
