import ChessCrawl.Monthly.Moves

/-! Sealed months. On the branch that adopts a stored body the flag comes from the body's own observation; after a fetch
it comes from the clock of the execution, which says something about the body only while the body is no older than the
execution. -/
namespace ChessCrawl.Monthly
open ChessCrawl.Acquisition ChessCrawl.Lib
set_option autoImplicit false

/-- Every sealed row refers to a body observed at or after the end of its month. -/
def SealedLaw (db : Db) : Prop :=
  ∀ unit row, db.coverage unit = some row → row.isSealed = true →
    ∃ raw year month stop observed, row.rawPayloadId = some raw ∧ monthBounds unit = .ok (year, month, stop) ∧
      db.payloadObservedAt raw = some observed ∧ stop ≤ observed

/-- An execution that began at or after the end of a month takes up no response of its job observed before that end, and
sends no request at a clock reading before it. -/
def timely (s : State) : Event → Bool
  | .advance job i =>
    match s.calls job with
    | some (.running x _ (.fetching unit)) =>
      match monthBounds unit with
      | .ok (year, month, stop) =>
        decide (x.now < stop) ||
          match if i.budgeted then s.db.latestJobPayload job (monthSource year month) else none with
          | some raw => (s.db.payloadObservedAt raw).any fun observed => decide (stop ≤ observed)
          | none => decide (stop ≤ s.clock)
      | .error _ => true
    | some (.running x _ (.requested unit _)) =>
      match monthBounds unit with
      | .ok (_, _, stop) => decide (x.now < stop) || decide (i.response ≠ .retry) || decide (stop ≤ s.clock)
      | .error _ => true
    | _ => true
  | _ => true

/-! ## The bodies of a call -/

/-- What a program point knows of the body it holds, in an execution that began at `now`. -/
def Pc.Timely (db : Db) (now : Int) : Pc → Prop
  | .stored unit raw => ∃ year month stop, monthBounds unit = .ok (year, month, stop) ∧ db.ObservedFrom raw stop
  | .requested unit requestedAt =>
    ∀ year month stop, monthBounds unit = .ok (year, month, stop) → stop ≤ now → stop ≤ requestedAt
  | .resolving unit =>
    ∀ year month stop, monthBounds unit = .ok (year, month, stop) → stop ≤ now →
      ∃ q, db.rawPayload q.id = some q ∧ q.source = monthSource year month ∧
        ∃ f ∈ db.fetchLogs, f.rawPayloadId = q.id ∧ stop ≤ f.attemptedAt
  | .fetched unit raw =>
    ∀ year month stop, monthBounds unit = .ok (year, month, stop) → stop ≤ now → db.ObservedFrom raw stop
  | _ => True

structure Sealing (s : State) : Prop where
  numbered : s.db.Numbered
  keyed : ∀ p ∈ s.db.rawPayloads, Keyed p.source
  law : ∀ unit row, s.db.coverage unit = some row → row.isSealed = true →
    ∃ raw year month stop, row.rawPayloadId = some raw ∧ monthBounds unit = .ok (year, month, stop) ∧
      s.db.ObservedFrom raw stop
  calls : ∀ job x c pc, s.calls job = some (.running x c pc) → pc.Timely s.db x.now

variable {username : String} {s t : State} {job : Nat} {db db' : Db} {i : Input} {next : Option Call}

theorem Sealing.sealedLaw (h : Sealing s) : SealedLaw s.db := by
  intro unit row hrow hseal
  obtain ⟨raw, year, month, stop, hraw, hbounds, hobserved⟩ := h.law unit row hrow hseal
  obtain ⟨observed, hat, hle⟩ := Db.observedFrom_iff.mp hobserved
  exact ⟨raw, year, month, stop, observed, hraw, hbounds, hat, hle⟩

theorem Pc.Timely.extend {now : Int} {pc : Pc} (h : pc.Timely db now) (hext : db.Extends db') : pc.Timely db' now := by
  cases pc with
  | stored unit raw =>
    obtain ⟨year, month, stop, hbounds, hobserved⟩ := h
    exact ⟨year, month, stop, hbounds, hobserved.extend hext⟩
  | resolving unit =>
    intro year month stop hbounds hnow
    obtain ⟨q, hq, hsrc, f, hf, hseen⟩ := h year month stop hbounds hnow
    exact ⟨q, hext.payload hq, hsrc, f, hext.log f hf, hseen⟩
  | fetched unit raw =>
    intro year month stop hbounds hnow
    exact (h year month stop hbounds hnow).extend hext
  | requested unit requestedAt => exact h
  | _ => trivial

/-! ## One move -/

/-- A body of a 304 or a 200 was observed when it was requested. -/
theorem observed_at_request {raw : Nat} {time requestedAt : Int} {q : RawPayload} {f : FetchLog}
    (hq : db.rawPayload raw = some q) (hf : f ∈ db.fetchLogs) (hraw : f.rawPayloadId = raw)
    (hat : f.attemptedAt = requestedAt) (htime : time ≤ requestedAt) : db.ObservedFrom raw time :=
  ⟨q, hq, .inr ⟨f, hf, hraw, hat ▸ htime⟩⟩

theorem Moves.timely {x : Exec} {c : Cursor} {pc : Pc} {x' : Exec} {c' : Cursor} {pc' : Pc} (hs : Sealing s)
    (hcall : s.calls job = some (.running x c pc)) (hok : Monthly.timely s (.advance job i) = true)
    (h : Moves username job s.clock s.db i (.running x c pc) db' (some (.running x' c' pc'))) :
    pc'.Timely db' x'.now := by
  have hnow := hs.calls job x c pc hcall
  unfold Monthly.timely at hok
  simp only [hcall] at hok
  cases h with
  | adopt _ _ unit raw year month stop observed hbounds hobserved hstop =>
    exact ⟨year, month, stop, hbounds, Db.observedFrom_iff.mpr ⟨observed, hobserved, hstop⟩⟩
  | reuse _ _ unit raw year month stop hbounds hbudget hraw =>
    intro year' month' stop' hbounds' hlate
    obtain ⟨rfl, rfl, rfl⟩ : year = year' ∧ month = month' ∧ stop = stop' := by
      rw [hbounds] at hbounds'
      cases hbounds'
      exact ⟨rfl, rfl, rfl⟩
    simp only [hbounds, hbudget, if_true, hraw, Bool.or_eq_true, decide_eq_true_eq, Option.any_eq_true] at hok
    rcases hok with hearly | ⟨observed, hat, hle⟩
    · omega
    · exact Db.observedFrom_iff.mpr ⟨observed, hat, hle⟩
  | request _ _ unit year month stop hbounds hraw =>
    intro year' month' stop' hbounds' hlate
    rw [hbounds] at hbounds'
    cases hbounds'
    simp only [hbounds, hraw, Bool.or_eq_true, decide_eq_true_eq] at hok
    omega
  | capture _ _ unit requestedAt body year month stop hbounds =>
    intro year' month' stop' hbounds' hlate
    obtain ⟨⟨p, hp, _, _⟩, _, hlogs, _, _⟩ := Db.persist_spec hs.numbered (some job)
      (monthSource year month) body requestedAt
    have hlog := List.mem_append_right s.db.fetchLogs (List.mem_singleton_self (⟨s.db.fetchLogs.length + 1, some job,
      (s.db.persist (some job) (monthSource year month) body requestedAt).2, requestedAt⟩ : FetchLog))
    rw [← hlogs] at hlog
    exact observed_at_request hp hlog rfl rfl (hnow year' month' stop' hbounds' hlate)
  | confirm _ _ unit requestedAt raw year month stop hbounds hraw =>
    obtain ⟨p, hp, hsrc, _⟩ := Db.latestSource_spec hs.numbered hraw stop
    have hlog : (⟨s.db.fetchLogs.length + 1, some job, raw, requestedAt⟩ : FetchLog) ∈
        (s.db.insertFetchLog (some job) raw requestedAt).fetchLogs := List.mem_append_right _ List.mem_cons_self
    split
    · intro year' month' stop' hbounds' hlate
      have hat := hnow year' month' stop' hbounds' hlate
      rw [hbounds] at hbounds'
      cases hbounds'
      have hid := (Db.mem_of_rawPayload hp).2
      exact ⟨p, hid ▸ hp, hsrc, _, hlog, hid.symm, hat⟩
    · intro year' month' stop' hbounds' hlate
      exact observed_at_request hp hlog rfl rfl (hnow year' month' stop' hbounds' hlate)
  | retry _ _ unit requestedAt hresponse =>
    intro year month stop hbounds hlate
    simp only [hbounds, hresponse, Bool.or_eq_true, decide_eq_true_eq] at hok
    rcases hok with (hearly | hne) | hclock
    · omega
    · exact absurd rfl hne
    · exact hclock
  | resolve _ _ unit raw hraw =>
    intro year month stop hbounds hlate
    obtain ⟨q, hq, hqsrc, f, hf, hfq, hat⟩ := hnow year month stop hbounds hlate
    obtain ⟨p, hp, hsrc, hlatest⟩ := Db.latestSource_spec hs.numbered hraw stop
    have hkey : p.source = monthSource year month :=
      unit_eq_monthKey hbounds (hs.keyed p (Db.mem_of_rawPayload hp).1) hsrc
    exact hlatest q (Db.mem_of_rawPayload hq).1 (by rw [hqsrc, ← hkey, hsrc]) f hf hfq hat
  | _ => trivial

/-- A row that a move leaves was there before, or is not sealed, or is the row of a body the call holds. -/
theorem recordCoverage_row {unit other : String} {new row : CoverageRow}
    (h : (db.recordCoverage unit new).coverage other = some row) :
    db.coverage other = some row ∨ other = unit ∧ row.isSealed = new.isSealed ∧
      (new.rawPayloadId.isSome = true → row.rawPayloadId = new.rawPayloadId) := by
  obtain ⟨hothers, hself⟩ := Db.recordCoverage_coverage db unit new
  by_cases hother : other = unit
  · subst hother
    rcases hself with ⟨raw, hraw, hnew⟩ | ⟨old, hold, _, hkept⟩
    · rw [hnew] at h
      cases h
      refine .inr ⟨rfl, rfl, fun hsome => ?_⟩
      rcases hraw with hraw | ⟨hnone, _⟩
      · exact hraw
      · rw [hnone] at hsome
        cases hsome
    · rw [hkept] at h
      rw [hold]
      exact .inl h
  · rw [hothers other hother] at h
    exact .inl h

theorem recordFailure_row {unit other : String} {status : Nat} {message : String} {now : Int} {row : CoverageRow}
    (h : (db.recordFailure unit status message now).coverage other = some row) (hseal : row.isSealed = true) :
    db.coverage other = some row := by
  rcases recordCoverage_row h with hold | ⟨_, hflag, _⟩
  · exact hold
  · rw [hflag] at hseal
    cases hseal

theorem Moves.law {call : Call} (hs : Sealing s) (hcall : s.calls job = some call)
    (h : Moves username job s.clock s.db i call db' next) {unit : String} {row : CoverageRow}
    (hrow : db'.coverage unit = some row) (hseal : row.isSealed = true) :
    s.db.coverage unit = some row ∨ ∃ raw year month stop, row.rawPayloadId = some raw ∧
      monthBounds unit = .ok (year, month, stop) ∧ s.db.ObservedFrom raw stop := by
  cases h with
  | captureIndex => exact .inl ((Db.persist_spec hs.numbered _ _ _ _).2.2.2.1 ▸ hrow)
  | capture => exact .inl ((Db.persist_spec hs.numbered _ _ _ _).2.2.2.1 ▸ hrow)
  | refuseIndex => exact .inl (recordFailure_row hrow hseal)
  | refuse => exact .inl (recordFailure_row hrow hseal)
  | gone => exact .inl (recordFailure_row hrow hseal)
  | absent =>
    rcases recordCoverage_row hrow with hold | ⟨_, hflag, _⟩
    · exact .inl hold
    · rw [hflag] at hseal
      cases hseal
  | «open» x units =>
    rcases (Db.recordPending_spec units x.now).2.2.2 unit row hrow with hold | hnew
    · exact .inl hold
    · rw [hnew] at hseal
      cases hseal
  | keep x c unit' raw hgames =>
    rcases recordCoverage_row hrow with hold | ⟨rfl, _, hraw⟩
    · exact .inl hold
    · obtain ⟨year, month, stop, hbounds, hobserved⟩ := hs.calls job x c _ hcall
      exact .inr ⟨raw, year, month, stop, hraw rfl, hbounds, hobserved⟩
  | pass x c unit' raw year month stop hbounds hgames =>
    rcases recordCoverage_row hrow with hold | ⟨rfl, hflag, hraw⟩
    · exact .inl hold
    · rw [hflag] at hseal
      exact .inr ⟨raw, year, month, stop, hraw rfl, hbounds,
        hs.calls job x c _ hcall year month stop hbounds (of_decide_eq_true hseal)⟩
  | _ => exact .inl hrow

/-! ## Every run -/

theorem Sealing.frame (hs : Sealing s) (job : Nat) (next : Option Call) (hext : s.db.Extends db') (hnum : db'.Numbered)
    (hkeyed : ∀ p ∈ db'.rawPayloads, Keyed p.source)
    (hlaw : ∀ unit row, db'.coverage unit = some row → row.isSealed = true →
      s.db.coverage unit = some row ∨ ∃ raw year month stop, row.rawPayloadId = some raw ∧
        monthBounds unit = .ok (year, month, stop) ∧ s.db.ObservedFrom raw stop)
    (hnext : ∀ x c pc, next = some (.running x c pc) → pc.Timely db' x.now) :
    Sealing { s with db := db', calls := Function.update s.calls job next } := by
  refine ⟨hnum, hkeyed, fun unit row hrow hseal => ?_, fun j x c pc hj => ?_⟩
  · rcases hlaw unit row hrow hseal with hold | ⟨raw, year, month, stop, hraw, hbounds, hobserved⟩
    · obtain ⟨raw, year, month, stop, hraw, hbounds, hobserved⟩ := hs.law unit row hold hseal
      exact ⟨raw, year, month, stop, hraw, hbounds, hobserved.extend hext⟩
    · exact ⟨raw, year, month, stop, hraw, hbounds, hobserved.extend hext⟩
  · dsimp only at hj ⊢
    by_cases hjob : j = job
    · subst hjob
      rw [Function.update_self] at hj
      exact hnext x c pc hj
    · rw [Function.update_of_ne hjob] at hj
      exact (hs.calls j x c pc hj).extend hext

theorem step_sealing {e : Event} (hs : Sealing s) (hok : timely s e = true) (h : step username s e = some t) :
    Sealing t := by
  cases e with
  | clock time =>
    cases h
    exact ⟨hs.numbered, hs.keyed, hs.law, hs.calls⟩
  | enter job params stop =>
    unfold step at h
    dsimp only at h
    split at h
    · cases h
    · cases h
      refine hs.frame job _ (.refl _) hs.numbered hs.keyed (fun _ _ hrow _ => .inl hrow) fun x c pc hnext => ?_
      rw [enter_head hnext]
      trivial
  | advance job i =>
    obtain ⟨call, db', next, hcall, hmove, rfl⟩ := step_advance h
    obtain ⟨hext, hnum⟩ := hmove.extends hs.numbered
    refine hs.frame job next hext hnum (hmove.keyed hs.numbered hs.keyed) (fun _ _ => hmove.law hs hcall) fun x' c' pc' hnext => ?_
    subst hnext
    cases call with
    | running x c pc => exact hmove.timely hs hcall hok
    | absent x units rest =>
      cases hmove
      trivial
    | _ => cases hmove
  | crash job =>
    cases h
    exact hs.frame job none (.refl _) hs.numbered hs.keyed (fun _ _ hrow _ => .inl hrow) fun _ _ _ hnext => by cases hnext
  | observe year month body requestedAt =>
    unfold step at h
    dsimp only at h
    split at h
    · next hmonth =>
      cases h
      obtain ⟨hext, hnum⟩ := Db.persist_extends hs.numbered none (monthSource year month) body requestedAt
      obtain ⟨_, hnew, _, hcov, _⟩ := Db.persist_spec hs.numbered none (monthSource year month) body requestedAt
      have hframe := hs.frame 0 (s.calls 0) hext hnum (fun p hp => (hnew p hp).elim (hs.keyed p)
        fun hsrc => .inr ⟨year, month, hmonth.1, hmonth.2, hsrc⟩) (fun _ _ hrow _ => .inl (hcov ▸ hrow))
        fun x c pc hcall => (hs.calls 0 x c pc hcall).extend hext
      rw [Function.update_eq_self] at hframe
      exact hframe
    · cases h

theorem init_sealing (h : (chesscom username).init s) : Sealing s := by
  obtain ⟨hdb, hcalls⟩ := h
  refine ⟨?_, ?_, ?_, fun job x c pc hcall => ?_⟩
  · rw [hdb]
    exact ⟨fun p hp => absurd hp List.not_mem_nil, fun p hp => absurd hp List.not_mem_nil⟩
  · rw [hdb]
    intro p hp
    cases hp
  · rw [hdb]
    intro unit row hrow
    cases hrow
  · rw [hcalls job] at hcall
    cases hcall

/-- In every run whose steps are timely, a sealed row refers to a body observed at or after its month's end. -/
theorem sealed_of_timely (h : Reach (chesscom username) (fun s e => timely s e = true) s) : SealedLaw s.db := by
  have hinv : Sealing s := Reach.invariant (fun s h0 => init_sealing h0)
    (fun s e t _ hs hok hstep => step_sealing hs hok hstep) h
  exact hinv.sealedLaw

/-! ## A month that closes between two executions -/

def adaIndex : Body := ⟨some [⟨"https", "api.chess.com", "/pub/player/ada/games/2024/01", "", ""⟩], none, 0⟩

def adaMonth : Body := ⟨none, some 3, 1⟩

def fullHistory : Params := ⟨.full, none, none, none, none, none, none⟩

def blank : State := ⟨Db.empty, 0, fun _ => none⟩

/-- A step of a budgeted call that meets a response, if it asks for one. -/
def answer (job : Nat) (response : Response) : Event := .advance job ⟨false, true, false, response⟩

/-- The steps of a fresh job up to its inventory. -/
def toInventory (job : Nat) (t : Int) : List Event :=
  [.clock t, .enter job fullHistory false, answer job .retry, answer job (.ok adaIndex), answer job .retry,
    answer job .retry]

/-- The steps of a job from the head of its loop to the request of a month. -/
def toRequest (job : Nat) : List Event := List.replicate 4 (answer job .retry)

/-- The first execution is interrupted after its capture, one second before the month ends; the second begins as the
month ends and takes the capture up. -/
def closingTrace : List Event :=
  toInventory 1 1706745599 ++ toRequest 1 ++
    [answer 1 (.ok adaMonth), .crash 1, .clock 1706745600, .enter 1 fullHistory false] ++ toRequest 1 ++
    [answer 1 .retry]

theorem blank_init : (chesscom username).init blank := ⟨rfl, fun _ => rfl⟩

/-- The month is recorded as open a second before its end, and a later job fetches it again once it has ended. -/
def refetchTrace : List Event :=
  toInventory 1 1706745599 ++ toRequest 1 ++ [answer 1 (.ok adaMonth), answer 1 .retry, .crash 1] ++
    toInventory 2 1706745600 ++ toRequest 2 ++ [answer 2 (.ok adaMonth), answer 2 .retry]

/-- The law at the end of a timely run that seals the month. -/
theorem sealed_of_timely_after_end :
    ∃ t, Reach (chesscom "ada") (fun s e => timely s e = true) t ∧
      t.db.coverage "2024/01" = some ⟨.complete, some 2, 1706745600, none, true⟩ ∧ SealedLaw t.db := by
  obtain ⟨t, hreach, ht⟩ := Reach.of_exec (chesscom "ada") (fun s e => timely s e = true) blank_init refetchTrace
    (fun t => decide (t.db.coverage "2024/01" = some ⟨.complete, some 2, 1706745600, none, true⟩)) (by decide +kernel)
  exact ⟨t, hreach, of_decide_eq_true ht, sealed_of_timely hreach⟩

/-- A month is sealed with a body that nobody has observed since it ended. -/
theorem open_month_sealed : ∃ t, Reachable (chesscom "ada") t ∧ ¬ SealedLaw t.db := by
  obtain ⟨t, hreach, ht⟩ := Reach.of_exec (chesscom "ada") (fun _ _ => True) blank_init closingTrace
    (fun t => decide (t.db.coverage "2024/01" = some ⟨.complete, some 2, 1706745600, none, true⟩ ∧
      t.db.payloadObservedAt 2 = some 1706745599)) (by decide +kernel)
  obtain ⟨hrow, hobserved⟩ := of_decide_eq_true ht
  refine ⟨t, hreach, fun hlaw => ?_⟩
  obtain ⟨raw, year, month, stop, observed, hraw, hbounds, hat, hle⟩ := hlaw "2024/01" _ hrow rfl
  have hend : monthBounds "2024/01" = .ok (2024, 1, 1706745600) := by decide +kernel
  rw [hend] at hbounds
  cases hbounds
  cases hraw
  rw [hobserved] at hat
  cases hat
  omega

end ChessCrawl.Monthly
