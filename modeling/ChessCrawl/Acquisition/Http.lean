import ChessCrawl.Budget.WorkBudgets

/-! Budgeted provider requests: `HttpClient.request` and `_bounded_response_chunks` of `providers/http.py`,
with the reservation hooks `JobRunner._reserve_request` and `_finish_request` of `jobs/runner.py` over the
budget ledger. What the transport, the clock, the stop flag and the other runners do is scripted, attempt by
attempt; pacing delays and durations are not modelled. -/
namespace ChessCrawl.Acquisition
open ChessCrawl.Lib ChessCrawl.Budget
set_option autoImplicit false

/-! ## Runners and their reservations -/

/-- The fields of a runner and of its connection that a request reads. -/
structure Runner where
  workBudgetId : Option Nat
  requestReservation : Option Nat
  deferNormalization : Bool
  payloadReadCredits : Nat
deriving DecidableEq

def Runner.idle : Runner := ⟨none, none, false, 0⟩

/-- A call of a hook that went through: a reservation with its limit, a settlement with the bytes. -/
inductive HookCall
  | reserved (reservationId : Nat) (limit : Int)
  | finished (reservationId : Nat) (received : Int)
deriving DecidableEq, Repr

/-- The ledger with the runners that share it; `calls` records the hook calls of the runner of interest. -/
structure Requests where
  ledger : Ledger
  runners : Nat → Runner
  calls : List HookCall

inductive HookError
  | runtime (message : String)
  | budget (error : BudgetError)
deriving DecidableEq, Repr

def Requests.setRunner (w : Requests) (n : Nat) (r : Runner) : Requests :=
  { w with runners := fun k => if k = n then r else w.runners k }

/-- What others do to the ledger between two steps of a request. Only a runner settles reservations, and
only the one it holds; the bytes it reports are left open here. -/
inductive Peer
  | ledger (event : Event)
  | reserve (n : Nat) (now : Int)
  | finish (n : Nat) (received : Int)
  | start (n : Nat) (budgetId : Nat) (deferNormalization : Bool)
  | stop (n : Nat)

def settles : Event → Bool
  | .settleRequest _ _ => true
  | _ => false

/-- The tables after an operation; one that raises leaves them. -/
def after (L : Ledger) (r : Result Ledger) : Ledger :=
  match r with
  | .ok L' => L'
  | .error _ => L

/-- One move of the other runners, or of an operator. -/
def Requests.peer (me : Nat) (w : Requests) : Peer → Requests
  | .ledger event => if settles event then w else { w with ledger := after w.ledger (w.ledger.step event) }
  | .reserve n now =>
    if n = me then w
    else match (w.runners n).workBudgetId, (w.runners n).requestReservation with
      | some budgetId, none =>
        match w.ledger.reserveRequest budgetId now with
        | .ok ((reservationId, _), L) =>
          { w with ledger := L }.setRunner n { w.runners n with requestReservation := some reservationId }
        | .error _ => w
      | _, _ => w
  | .finish n received =>
    if n = me then w
    else match (w.runners n).requestReservation with
      | some reservationId =>
        match w.ledger.settleRequest reservationId received with
        | .ok L => { w with ledger := L }.setRunner n { w.runners n with requestReservation := none }
        | .error _ => w
      | none => w
  | .start n budgetId deferNormalization =>
    if n = me then w
    else w.setRunner n { w.runners n with workBudgetId := some budgetId, deferNormalization := deferNormalization }
  | .stop n => if n = me then w else w.setRunner n .idle

def Requests.peers (me : Nat) (w : Requests) (ps : List Peer) : Requests := ps.foldl (Requests.peer me) w

/-- The moment of a reservation: the clock, the workspace's unfinished jobs, and what others do between the
backlog check and the reservation. -/
structure Moment where
  now : Int
  queued : Int
  between : List Peer

/-- `JobRunner._reserve_request` -/
def Requests.reserveRequest (me : Nat) (m : Moment) (w : Requests) : Except HookError Int × Requests :=
  match (w.runners me).workBudgetId with
  | none => (.error (.runtime "Provider acquisition has no durable work budget"), w)
  | some budgetId =>
    if (w.runners me).requestReservation.isSome then
      (.error (.runtime "Previous request reservation is unsettled"), w)
    else
      let room := if (w.runners me).deferNormalization then w.ledger.requireBacklogRoom budgetId m.queued m.now
        else .ok w.ledger
      match room with
      | .error e => (.error (.budget e), w)
      | .ok L =>
        let w := { w with ledger := L }.peers me m.between
        match w.ledger.reserveRequest budgetId m.now with
        | .error e => (.error (.budget e), w)
        | .ok ((reservationId, limit), L) =>
          let runner := w.runners me
          (.ok limit,
            { w with ledger := L, calls := w.calls ++ [HookCall.reserved reservationId limit] }.setRunner me
              { runner with
                requestReservation := some reservationId
                payloadReadCredits := runner.payloadReadCredits + 1 })

/-- `JobRunner._finish_request` -/
def Requests.finishRequest (me : Nat) (received : Int) (w : Requests) : Except HookError Unit × Requests :=
  match (w.runners me).requestReservation with
  | none => (.error (.runtime "Provider response has no reserved work"), w)
  | some reservationId =>
    match w.ledger.settleRequest reservationId received with
    | .error e => (.error (.budget e), w)
    | .ok L =>
      (.ok (),
        { w with ledger := L, calls := w.calls ++ [HookCall.finished reservationId received] }.setRunner me
          { w.runners me with requestReservation := none })

/-! ## Responses -/

/-- `httpx.RequestError`, and whether it is a timeout. -/
inductive TransportError
  | timeout | network
deriving DecidableEq, Repr

/-- What a call into the transport or the database can raise. -/
inductive Fault
  | request (error : TransportError)
  | other
deriving DecidableEq, Repr

/-- A streamed response. An already buffered one has its content as the only chunk. -/
structure Response where
  statusCode : Nat
  url : String
  headers : List (String × String)
  rawChunks : List (List UInt8)
  /-- what the iterator raises after the chunks, if it does not end there -/
  ending : Option Fault
  /-- what leaving the stream or reading the headers raises -/
  closing : Option Fault

/-- Header names are compared without case. -/
def Response.header (r : Response) (name : String) : Option String :=
  (r.headers.find? fun h => h.1.toLower = name).map Prod.snd

def isSpace (c : Char) : Bool := (9 ≤ c.toNat && c.toNat ≤ 13) || (28 ≤ c.toNat && c.toNat ≤ 32) ||
  c.toNat = 0x85 || c.toNat = 0xa0

/-- `value.strip().lower()` -/
def normalized (value : String) : String :=
  (String.ofList ((value.toList.dropWhile isSpace).reverse.dropWhile isSpace).reverse).toLower

def Response.encoding (r : Response) : String := normalized ((r.header "content-encoding").getD "identity")

/-- `_cache_relevant_headers` -/
def Response.cacheRelevantHeaders (r : Response) : List (String × String) :=
  (r.headers.filter fun h =>
    h.1.toLower ∈ ["etag", "last-modified", "content-type", "content-length", "retry-after"]).map
    fun h => (h.1.toLower, h.2)

/-- The slices of one raw chunk: offsets from 0 in steps of the read size. -/
def slices (readSize : Nat) (view : List UInt8) : List (List UInt8) :=
  (List.range ((view.length + readSize - 1) / readSize)).map fun k => (view.drop (k * readSize)).take readSize

/-- `_bounded_response_chunks` -/
def boundedResponseChunks (rawChunks : List (List UInt8)) (readSize : Nat) : List (List UInt8) :=
  rawChunks.flatMap (slices readSize)

/-! ## One attempt -/

/-- What the guarded block of an attempt raises. -/
inductive Raised
  | requestStopped
  | responseTooLarge (limit : Int) (received : Nat) (statusCode : Option Nat)
  | responseEncoding (encoding : String) (statusCode : Nat)
  | responseDeadline (received : Nat) (statusCode : Option Nat)
  | valueError (message : String)
  | fault (fault : Fault)
deriving DecidableEq, Repr

/-- The read loop. `late k` is the answer of the `k`-th deadline check. The bytes received stay known when
the loop raises. -/
def readLoop (limit : Int) (r : Response) (late : Nat → Bool) :
    Nat → Nat → List (List UInt8) → List (List UInt8) → Nat × Except Raised (List (List UInt8))
  | k, received, chunks, [] =>
    if late k then (received, .error (.responseDeadline received (some r.statusCode)))
    else match r.ending with
      | some fault => (received, .error (.fault fault))
      | none =>
        if late (k + 1) then (received, .error (.responseDeadline received (some r.statusCode)))
        else (received, .ok chunks)
  | k, received, chunks, chunk :: rest =>
    if late k then (received, .error (.responseDeadline received (some r.statusCode)))
    else
      let received := received + chunk.length
      if (received : Int) > limit then (received, .error (.responseTooLarge limit received (some r.statusCode)))
      else if late (k + 1) then (received, .error (.responseDeadline received (some r.statusCode)))
      else readLoop limit r late (k + 2) received (if r.statusCode = 200 then chunks ++ [chunk] else chunks) rest

/-- What answers a request that is sent. -/
inductive Transport
  | fails (fault : Fault)
  | responds (response : Response)

/-- `before_request`: the wait for the provider's deadline. -/
inductive Prepared
  | ready | stopped | fails
deriving DecidableEq, Repr

/-- What one pass of the retry loop meets. -/
structure Attempt where
  stopsBefore : Bool
  moment : Moment
  /-- what others do while the reservation is held -/
  held : List Peer
  prepared : Prepared
  stopsReserved : Bool
  transport : Transport
  late : Nat → Bool
  /-- the attempt is over its time when a transport error is handled -/
  errorLate : Bool
  /-- writing the provider's deadline fails -/
  persistFails : Bool
  /-- the stop flag after the deadline is written, and after the backoff -/
  stopsAfter : Bool
  stopsSlept : Bool

structure FetchAttempt where
  statusCode : Option Nat
  attempt : Nat
  bytesCount : Option Nat
  errorKind : Option TransportError
deriving DecidableEq, Repr

structure HttpFetchResult where
  statusCode : Nat
  url : String
  headers : List (String × String)
  contentType : Option String
  body : Option (List UInt8)
  attempts : List FetchAttempt
deriving DecidableEq, Repr

/-- How the guarded block ends when it does not raise. -/
inductive Guarded
  | returns (result : HttpFetchResult)
  | completes (response : Response) (body : Option (List UInt8))

/-- The stream of a budgeted request. -/
def streamResponse (limit : Int) (r : Response) (late : Nat → Bool) : Nat × Except Raised (Option (List UInt8)) :=
  if r.encoding ≠ "identity" then (0, .error (.responseEncoding r.encoding r.statusCode))
  else
    let read := readLoop limit r late 0 0 [] (boundedResponseChunks r.rawChunks (min 65536 limit.toNat))
    match read.2 with
    | .error e => (read.1, .error e)
    | .ok chunks =>
      match r.closing with
      | some fault => (read.1, .error (.fault fault))
      | none => (read.1, .ok (if r.statusCode = 200 then some chunks.flatten else none))

/-- The block guarded by `finally`, with the bytes received so far. Without hooks the response is read by
the transport itself. -/
def guarded (limit : Option Int) (a : Attempt) (last : Option HttpFetchResult) : Nat × Except Raised Guarded :=
  match a.prepared with
  | .stopped => (0, .error .requestStopped)
  | .fails => (0, .error (.fault .other))
  | .ready =>
    if a.stopsReserved then
      match last with
      | some result => (0, .ok (.returns result))
      | none => (0, .error .requestStopped)
    else
      match limit with
      | none =>
        match a.transport with
        | .fails fault => (0, .error (.fault fault))
        | .responds r =>
          match r.ending.or r.closing with
          | some fault => (0, .error (.fault fault))
          | none => (0, .ok (.completes r (if r.statusCode = 200 then some r.rawChunks.flatten else none)))
      | some limit =>
        if limit < 0 then (0, .error (.valueError "Request budget reservation must return a nonnegative integer"))
        else if limit = 0 then (0, .error (.responseTooLarge limit 0 none))
        else
          match a.transport with
          | .fails fault => (0, .error (.fault fault))
          | .responds r =>
            let streamed := streamResponse limit r a.late
            (streamed.1, streamed.2.map fun body => .completes r body)

/-! ## The request -/

/-- How a request ends. -/
inductive Exit
  | returned (result : HttpFetchResult)
  | raised (e : Raised)
  | hook (e : HookError)
  | unreachable
deriving DecidableEq, Repr

/-- What follows the handlers of one attempt, before its `finally` block runs. -/
inductive Handled
  | leaves (exit : Exit)
  | continues (result : HttpFetchResult)

def handled (url : String) (n : Nat) (budgeted : Bool) (a : Attempt) (attempts : List FetchAttempt)
    (last : Option HttpFetchResult) (received : Nat) : Except Raised Guarded → Handled
  | .ok (.returns result) => .leaves (.returned result)
  | .ok (.completes r body) =>
    .continues ⟨r.statusCode, r.url, r.cacheRelevantHeaders, r.header "content-type", body,
      attempts ++ [⟨some r.statusCode, n, if budgeted then some received else body.map List.length, none⟩]⟩
  | .error .requestStopped =>
    match last with
    | some result => .leaves (.returned result)
    | none => .leaves (.raised .requestStopped)
  | .error (.fault (.request e)) =>
    if budgeted && a.errorLate then
      .leaves (.raised (.responseDeadline received (match a.transport with
        | .responds r => some r.statusCode
        | .fails _ => none)))
    else
      .continues ⟨0, url, [], none, none,
        attempts ++ [⟨none, n, if budgeted then some received else none, some e⟩]⟩
  | .error e => .leaves (.raised e)

/-- `finally`: the settlement's own failure replaces what was under way. -/
def Requests.settled (me : Nat) (budgeted : Bool) (received : Nat) (h : Handled) (w : Requests) : Handled × Requests :=
  if budgeted then
    match w.finishRequest me received with
    | (.ok (), w) => (h, w)
    | (.error e, w) => (.leaves (.hook e), w)
  else (h, w)

/-- A status that is worth another attempt. -/
def retried (statusCode : Nat) : Bool :=
  statusCode = 0 || statusCode = 429 || (500 ≤ statusCode && statusCode ≤ 599)

/-- One attempt from its reservation to its settlement. -/
def Requests.attempt (me : Nat) (url : String) (budgeted : Bool) (a : Attempt) (n : Nat) (last : Option HttpFetchResult)
    (w : Requests) : Handled × Requests :=
  let attempts := (last.map (·.attempts)).getD []
  let reservation : Except HookError (Option Int) × Requests :=
    if budgeted then
      let r := w.reserveRequest me a.moment
      (r.1.map some, r.2)
    else (.ok none, w)
  match reservation with
  | (.error e, w) => (.leaves (.hook e), w)
  | (.ok limit, w) =>
    let w := w.peers me a.held
    let g := guarded limit a last
    w.settled me budgeted g.1 (handled url n budgeted a attempts last g.1 g.2)

/-- The loop over the attempts; `remaining` of them are left and `n` is the number of the next one. -/
def Requests.attemptLoop (me : Nat) (url : String) (budgeted : Bool) (script : Nat → Attempt) :
    Nat → Nat → Option HttpFetchResult → Requests → Exit × Requests
  | 0, _, _, w => (.unreachable, w)
  | remaining + 1, n, last, w =>
    let a := script n
    if a.stopsBefore then
      match last with
      | some result => (.returned result, w)
      | none => (.raised .requestStopped, w)
    else
      match w.attempt me url budgeted a n last with
      | (.leaves exit, w) => (exit, w)
      | (.continues result, w) =>
        if a.persistFails then (.raised (.fault .other), w)
        else if ¬ retried result.statusCode then (.returned result, w)
        else if remaining = 0 || a.stopsAfter || a.stopsSlept then (.returned result, w)
        else w.attemptLoop me url budgeted script remaining (n + 1) (some result)

/-- `HttpClient.request`; the hooks are configured together or not at all. -/
def Requests.request (me : Nat) (reserves finishes : Bool) (maxRetries : Nat) (url : String) (script : Nat → Attempt)
    (w : Requests) : Exit × Requests :=
  if reserves ≠ finishes then
    (.raised (.valueError "Request budget reservation and settlement must be configured together"), w)
  else w.attemptLoop me url reserves script (maxRetries + 1) 1 none

/-! ## The system -/

/-- What the runner of interest and its surroundings do, a request at a time. -/
inductive RunnerEvent
  | peer (p : Peer)
  | startJob (budgetId : Nat) (deferNormalization : Bool)
  | endJob
  | request (reserves finishes : Bool) (maxRetries : Nat) (url : String) (script : Nat → Attempt)

def Requests.step (me : Nat) (w : Requests) : RunnerEvent → Option Requests
  | .peer p => some (w.peer me p)
  | .startJob budgetId deferNormalization =>
    some (w.setRunner me
      { w.runners me with workBudgetId := some budgetId, deferNormalization := deferNormalization })
  | .endJob => some (w.setRunner me .idle)
  | .request reserves finishes maxRetries url script => some (w.request me reserves finishes maxRetries url script).2

def runnerSystem (me : Nat) : System Requests RunnerEvent where
  init w := w = ⟨.empty, fun _ => .idle, []⟩
  step := Requests.step me

end ChessCrawl.Acquisition
