import ChessCrawl.Collection.Lichess

/-! Every move that a call of `execute_collection` can make, with the guard it passed. Proofs about
runs go by cases on `Moves`, so that they never unfold the step function. -/
namespace ChessCrawl.Collection
open ChessCrawl.Lib
set_option autoImplicit false

inductive Moves (env : Env) (job : Nat) (clock : Int) (db : Db) : Call → Db → Option Call → Prop
  | drop (call : Call) : Moves env job clock db call db none
  | create {x : Exec} {since given : Option Int} {first : Span}
      (hs : milliseconds x.params.sinceMs x.params.since = some since)
      (hu : milliseconds x.params.untilMs x.params.upto = some given)
      (hle : ∀ s, since = some s → s ≤ given.getD x.nowMs)
      (hfirst : first.upper ≤ given.getD x.nowMs)
      (hback : x.params.mode = .backfill → first = ⟨since, given.getD x.nowMs⟩) :
      Moves env job clock db (.creating x) db (some (.pinning x since (given.getD x.nowMs) first))
  | pin {x : Exec} {since : Option Int} {upto : Int} {first : Span} {highWater : Nat}
      (hw : highWater = if x.params.mode = .full then db.coveredSourceHighWater upto since else 0) :
      Moves env job clock db (.pinning x since upto first) db (some (.saving x {
        requestFingerprint := x.params.fingerprint, sinceMs := first.lower, upperMs := upto,
        requestedSinceMs := since, untilMs := first.upper, limit := x.pageSize,
        followupAfter := none, phase := if highWater = 0 then .followups else .stored,
        localAfter := 0, localHighWater := highWater, done := false }))
  | save {x : Exec} {c : Cursor} :
      Moves env job clock db (.saving x c) (db.saveCheckpoint job c) (some (.running x c .start))
  | readStored {x : Exec} {c : Cursor} {sources : List Nat} (hphase : c.phase = .stored)
      (hsources : sources = db.coveredSources c.upperMs c.localAfter c.localHighWater x.batchSize
        c.requestedSinceMs) :
      Moves env job clock db (.running x c .start) db
        (some (.running x c (.stored sources (sources.length < x.batchSize))))
  | readFollowups {x : Exec} {c : Cursor} {rows : List GameRef} {full : Bool}
      (hphase : c.phase = .followups) :
      Moves env job clock db (.running x c .start) db (some (.running x c (.followups rows full)))
  | resume {x : Exec} {c : Cursor} (hphase : c.phase = .pages) :
      Moves env job clock db (.running x c .start) db (some (.running x c .paging))
  | replay {x : Exec} {c : Cursor} {raw fetch : Nat} {sources : List Nat} {short : Bool} :
      Moves env job clock db (.running x c (.stored (raw :: sources) short))
        (db.enqueuePayloadNormalization raw fetch none job (env.jobRun job))
        (some (.running x c (.replayed raw sources short)))
  | replayLocal {x : Exec} {c : Cursor} {raw : Nat} {sources : List Nat} {short : Bool}
      (hrun : env.jobRun job = none) :
      Moves env job clock db (.running x c (.stored (raw :: sources) short)) db
        (some (.running x c (.replayed raw sources short)))
  | replayed {x x' : Exec} {c : Cursor} {raw : Nat} {sources : List Nat} {short : Bool}
      (hx : x'.params = x.params) (hb : x'.batchSize = x.batchSize) (hpos : 0 < x'.processed)
      (hsize : x'.pageSize = x.pageSize) :
      Moves env job clock db (.running x c (.replayed raw sources short))
        (db.saveCheckpoint job { c with localAfter := raw })
        (some (.running x' { c with localAfter := raw } (.stored sources short)))
  | storedShort {x : Exec} {c : Cursor} {next : Option Call}
      (hnext : next = none ∨ next = some (.running x { c with phase := .followups } .start)) :
      Moves env job clock db (.running x c (.stored [] true))
        (db.saveCheckpoint job { c with phase := .followups }) next
  | storedFull {x : Exec} {c : Cursor} {pc : Pc} (hpc : pc = .start ∨ pc = .paging) (hx : x.processed = 0) :
      Moves env job clock db (.running x c (.stored [] false)) db (some (.running x c pc))
  | followup {x : Exec} {c : Cursor} {ref : GameRef} {rows : List GameRef} {full : Bool} :
      Moves env job clock db (.running x c (.followups (ref :: rows) full)) db
        (some (.running x c (.fetching (.followup ref rows full))))
  | followed {x : Exec} {c : Cursor} {next : Option Call}
      (hnext : next = none ∨ next = some (.running x { c with phase := .pages } .paging)) :
      Moves env job clock db (.running x c (.followups [] false))
        (db.saveCheckpoint job { c with phase := .pages }) next
  | planCovered {x : Exec} {c : Cursor} (heq : (replan db x c).sinceMs = some (replan db x c).untilMs) :
      Moves env job clock db (.running x c .paging) db (some (.running x (replan db x c) .closing))
  | plan {x : Exec} {c : Cursor} (hne : (replan db x c).sinceMs ≠ some (replan db x c).untilMs) :
      Moves env job clock db (.running x c .paging) db (some (.running x (replan db x c)
        (.fetching (.page ⟨(replan db x c).sinceMs, (replan db x c).untilMs, (replan db x c).limit⟩))))
  | close {x : Exec} {c : Cursor} :
      Moves env job clock db (.running x c .closing) (db.commitCovered job c x.now) none
  | reuse {x : Exec} {c : Cursor} {t : Target} {raw fetch : Nat}
      (hl : db.latestJobPayload job t.source = some (raw, fetch)) :
      Moves env job clock db (.running x c (.fetching t))
        (db.enqueuePayloadNormalization raw fetch t.maxGames job (env.jobRun job))
        (some (.running x c (.fetched t raw)))
  | request {x : Exec} {c : Cursor} {t : Target} :
      Moves env job clock db (.running x c (.fetching t)) db (some (.running x c (.requested t clock)))
  | refuse {x : Exec} {c : Cursor} {t : Target} {requestedAt : Int} {status : Nat} {message : String} :
      Moves env job clock db (.running x c (.requested t requestedAt)) db
        (some (.running x c (.refused t status message)))
  | capture {x : Exec} {c : Cursor} {t : Target} {requestedAt : Int} {body : List GameObject}
      (ha : ∀ k, t = .page k → env.answers k body = true) :
      Moves env job clock db (.running x c (.requested t requestedAt))
        ((db.storeRawPayload t.source body requestedAt).1.insertFetchLog job
          (db.storeRawPayload t.source body requestedAt).2 clock).1
        (some (.running x c (.captured t (db.storeRawPayload t.source body requestedAt).2
          ((db.storeRawPayload t.source body requestedAt).1.insertFetchLog job
            (db.storeRawPayload t.source body requestedAt).2 clock).2)))
  | queue {x : Exec} {c : Cursor} {t : Target} {raw fetch : Nat} :
      Moves env job clock db (.running x c (.captured t raw fetch))
        (db.enqueuePayloadNormalization raw fetch t.maxGames job (env.jobRun job))
        (some (.running x c (.fetched t raw)))
  | refresh {x x' : Exec} {c : Cursor} {ref : GameRef} {rows : List GameRef} {full : Bool} {raw : Nat}
      {g : GameObject} {db' : Db} (ht : db.trackGame g = some db') (hx : x'.params = x.params)
      (hb : x'.batchSize = x.batchSize) (hsize : x'.pageSize = x.pageSize) :
      Moves env job clock db (.running x c (.fetched (.followup ref rows full) raw))
        (db'.saveCheckpoint job { c with followupAfter := some ref })
        (some (.running x' { c with followupAfter := some ref } (.followups rows full)))
  | vanished {x x' : Exec} {c : Cursor} {ref : GameRef} {rows : List GameRef} {full : Bool}
      {status : Nat} {message : String} (hx : x'.params = x.params) (hb : x'.batchSize = x.batchSize)
      (hsize : x'.pageSize = x.pageSize) :
      Moves env job clock db (.running x c (.refused (.followup ref rows full) status message))
        ((db.recordFailure (.followup ref) status message x.now).saveCheckpoint job
          { c with followupAfter := some ref })
        (some (.running x' { c with followupAfter := some ref } (.followups rows full)))
  | fail {x : Exec} {c : Cursor} {t : Target} {unit : UnitKey} {status : Nat} {message : String}
      (hunit : unit ≠ .history) :
      Moves env job clock db (.running x c (.refused t status message))
        (db.recordFailure unit status message x.now) none
  | record {x : Exec} {c : Cursor} {k : PageKey} {raw : Nat} {p : RawPayload} {db' : Db}
      (hp : db.rawPayload raw = some p) (hr : db.recordPage k raw p.body = some db') :
      Moves env job clock db (.running x c (.fetched (.page k) raw)) db'
        (some (.running x c (.recorded k raw)))
  | judge {x : Exec} {c : Cursor} {k : PageKey} {raw : Nat} {p : RawPayload}
      (hp : db.rawPayload raw = some p) :
      Moves env job clock db (.running x c (.recorded k raw)) db
        (some (.running x c (.judged k raw (if x.params.mode = .backfill then rangeDone k p.body
          else (db.missingWindows c.requestedSinceMs c.upperMs).isEmpty))))
  | finish {x : Exec} {c : Cursor} {k : PageKey} {raw : Nat} {p : RawPayload} {done : Bool}
      (hp : db.rawPayload raw = some p) (hd : rangeDone k p.body = true) :
      Moves env job clock db (.running x c (.judged k raw done))
        (db.commitPage job c k raw true done x.now) none
  | saturate {x : Exec} {c : Cursor} {k : PageKey} {raw : Nat} {p : RawPayload} {ts : List Int}
      {oldest : Int} {limit : Nat} {done : Bool} (hp : db.rawPayload raw = some p)
      (ht : pageTimestamps k p.body = some ts) (hd : rangeDone k p.body = false)
      (hlast : ts.getLast? = some oldest) (hlimit : 1 ≤ limit) :
      Moves env job clock db (.running x c (.judged k raw done))
        (db.commitPage job { c with untilMs := oldest + 1, limit := limit } k raw false done x.now) none
  | overflow {x : Exec} {c : Cursor} {k : PageKey} {raw : Nat} {done : Bool} :
      Moves env job clock db (.running x c (.judged k raw done))
        (db.recordCoverage (.millis k) ⟨.error, some raw, x.now, some boundaryError, none, none, false⟩)
        none

theorem head_missing_upper_le (db : Db) (since : Option Int) (upto : Int) :
    ((db.missingWindows since upto).headD ⟨some upto, upto⟩).upper ≤ upto := by
  cases hm : db.missingWindows since upto with
  | nil => exact le_refl upto
  | cons f fs =>
    refine missing_upper_le ⟨since, upto⟩ db.coveredSpans f ?_
    have hin : f ∈ db.missingWindows since upto := by
      rw [hm]
      exact List.mem_cons_self
    exact hin

theorem creating_moves {env : Env} {job : Nat} {clock : Int} {db : Db} {i : Input} {x : Exec}
    {db' : Db} {next : Option Call}
    (h : (Call.creating x).advance env job clock db i = some (db', next)) :
    Moves env job clock db (.creating x) db' next := by
  rw [Call.advance] at h
  split at h
  · next since given hs hu =>
    dsimp only at h
    split at h
    · cases h
      exact .drop _
    · next hle =>
      cases h
      refine .create hs hu ?_ ?_ ?_
      · rintro s rfl
        simpa using hle
      · split
        · exact le_refl _
        · exact head_missing_upper_le db since _
      · intro hback
        rw [if_pos hback]
  · cases h
    exact .drop _

theorem stored_moves {env : Env} {job : Nat} {clock : Int} {db : Db} {i : Input} {x : Exec}
    {c : Cursor} {sources : List Nat} {short : Bool} {db' : Db} {next : Option Call}
    (h : (Pc.stored sources short).advance env job clock db i x c = some (db', next)) :
    Moves env job clock db (.running x c (.stored sources short)) db' next := by
  cases sources with
  | nil =>
    rw [Pc.advance] at h
    cases short with
    | true =>
      simp only [if_true] at h
      split at h
      · cases h
        exact .storedShort (.inl rfl)
      · cases h
        exact .storedShort (.inr rfl)
    | false =>
      simp only [Bool.false_eq_true, if_false] at h
      split at h
      · cases h
        exact .drop _
      · next hx =>
        cases h
        refine .storedFull ?_ (by omega)
        split
        · exact .inl rfl
        · exact .inr rfl
  | cons raw sources =>
    rw [Pc.advance] at h
    split at h
    · cases h
      exact .drop _
    · dsimp only at h
      cases h
      by_cases hq : i.needsParser = true ∨ (env.jobRun job).isSome = true
      · rw [if_pos hq]
        exact .replay
      · rw [if_neg hq]
        refine .replayLocal ?_
        have hrun := not_or.mp hq
        simpa using hrun.2

theorem fetched_moves {env : Env} {job : Nat} {clock : Int} {db : Db} {i : Input} {x : Exec}
    {c : Cursor} {t : Target} {raw : Nat} {db' : Db} {next : Option Call}
    (h : (Pc.fetched t raw).advance env job clock db i x c = some (db', next)) :
    Moves env job clock db (.running x c (.fetched t raw)) db' next := by
  cases t with
  | followup ref rows full =>
    rw [Pc.advance] at h
    split at h
    · split at h
      · split at h
        · next ht =>
          cases h
          exact .refresh ht rfl rfl rfl
        · cases h
          exact .drop _
      · cases h
        exact .drop _
    · cases h
      exact .drop _
  | page k =>
    rw [Pc.advance] at h
    split at h
    · next hr =>
      obtain ⟨p, hp, hr⟩ := Option.bind_eq_some_iff.mp hr
      cases h
      exact .record hp hr
    · cases h
      exact .drop _

/-- There is room for the games of the oldest millisecond. -/
theorem nextPage_pos {pageSize : Nat} {k : PageKey} {ts : List Int} {oldest : Int} (h : ts.getLast? = some oldest) :
    1 ≤ (nextPage pageSize k ts oldest).2 := by
  have hcount := List.count_pos_iff.mpr (List.mem_of_getLast? h)
  unfold nextPage
  dsimp only
  split
  · exact le_max_of_le_left (by omega)
  · omega

theorem judged_moves {env : Env} {job : Nat} {clock : Int} {db : Db} {i : Input} {x : Exec}
    {c : Cursor} {k : PageKey} {raw : Nat} {done : Bool} {db' : Db} {next : Option Call}
    (h : (Pc.judged k raw done).advance env job clock db i x c = some (db', next)) :
    Moves env job clock db (.running x c (.judged k raw done)) db' next := by
  rw [Pc.advance] at h
  split at h
  · cases h
    exact .drop _
  · next p ts hr =>
    obtain ⟨q, hp, hr⟩ := Option.bind_eq_some_iff.mp hr
    obtain ⟨us, ht, heq⟩ := Option.map_eq_some_iff.mp hr
    cases heq
    split at h
    · next hd =>
      cases h
      exact .finish hp hd
    · next hd =>
      split at h
      · cases h
        exact .drop _
      · next oldest hlast =>
        dsimp only at h
        split at h
        · cases h
          exact .overflow
        · cases h
          exact .saturate hp ht (by simpa using hd) hlast (nextPage_pos hlast)

theorem Call.advance_moves {env : Env} {job : Nat} {clock : Int} {db : Db} {i : Input} {call : Call}
    {db' : Db} {next : Option Call} (h : call.advance env job clock db i = some (db', next)) :
    Moves env job clock db call db' next := by
  cases call with
  | creating x => exact creating_moves h
  | pinning x since upto first =>
    cases h
    exact .pin rfl
  | saving x c =>
    cases h
    exact .save
  | running x c pc =>
    change pc.advance env job clock db i x c = some (db', next) at h
    cases pc with
    | start =>
      rw [Pc.advance] at h
      split at h
      · next hphase =>
        cases h
        exact .readStored hphase rfl
      · next hphase =>
        cases h
        exact .readFollowups hphase
      · next hphase =>
        cases h
        exact .resume hphase
    | stored sources short => exact stored_moves h
    | replayed raw sources short =>
      cases h
      exact .replayed rfl rfl (Nat.succ_pos _) rfl
    | followups rows full =>
      cases rows with
      | nil =>
        rw [Pc.advance] at h
        cases full with
        | true =>
          cases h
          exact .drop _
        | false =>
          simp only [Bool.false_eq_true, if_false] at h
          split at h
          · cases h
            exact .followed (.inl rfl)
          · cases h
            exact .followed (.inr rfl)
      | cons ref rows =>
        rw [Pc.advance] at h
        split at h
        · cases h
          exact .drop _
        · cases h
          exact .followup
    | paging =>
      rw [Pc.advance] at h
      split at h
      · cases h
        exact .drop _
      · dsimp only at h
        split at h
        · next heq =>
          cases h
          exact .planCovered heq
        · next hne =>
          cases h
          exact .plan hne
    | closing =>
      cases h
      exact .close
    | fetching t =>
      rw [Pc.advance] at h
      split at h
      · next raw fetch hl =>
        cases h
        split at hl
        · exact .reuse hl
        · cases hl
      · cases h
        exact .request
    | requested t requestedAt =>
      rw [Pc.advance] at h
      split at h
      · cases h
        exact .refuse
      · split at h
        · next hok =>
          cases h
          refine .capture fun k hk => ?_
          subst hk
          exact hok
        · cases h
    | captured t raw fetch =>
      cases h
      exact .queue
    | fetched t raw => exact fetched_moves h
    | refused t status message =>
      cases t with
      | followup ref rows full =>
        rw [Pc.advance] at h
        dsimp only at h
        split at h
        · cases h
          exact .vanished rfl rfl rfl
        · cases h
          exact .fail (by simp)
      | page k =>
        cases h
        exact .fail (by simp)
    | recorded k raw =>
      rw [Pc.advance] at h
      split at h
      · cases h
        exact .drop _
      · next p hp =>
        cases h
        exact .judge hp
    | judged k raw done => exact judged_moves h

/-! ## Starting a call -/

theorem orElse_of_milliseconds {ms seconds given : Option Int} (h : milliseconds ms seconds = some given) :
    (ms.orElse fun _ => seconds.map (· * 1000)) = given := by
  unfold milliseconds at h
  cases ms with
  | some v =>
    simp only at h
    split at h
    · exact Option.some.inj h
    · cases h
  | none =>
    cases seconds with
    | some sec =>
      simp only at h
      split at h
      · exact Option.some.inj h
      · cases h
    | none => exact Option.some.inj h

theorem positive_pos {value : Option Int} {fallback maximum : Int} {n : Nat}
    (h : positive value fallback maximum = some n) : 0 < n := by
  unfold positive at h
  dsimp only at h
  split at h
  · cases h
    omega
  · cases h

theorem ofParams_fields {p : Params} {nowMs : Int} {x : Exec} (h : Exec.ofParams p nowMs = some x) :
    x.params = p ∧ x.nowMs = nowMs ∧ 0 < x.batchSize := by
  unfold Exec.ofParams at h
  obtain ⟨b, hb, h⟩ := Option.bind_eq_some_iff.mp h
  obtain ⟨n, _, h⟩ := Option.bind_eq_some_iff.mp h
  obtain ⟨m, _, h⟩ := Option.bind_eq_some_iff.mp h
  split at h
  · cases h
  · cases h
    exact ⟨rfl, rfl, positive_pos hb⟩

/-- A call resumes its checkpoint under the same fingerprint, or starts without one. -/
theorem enter_cases {env : Env} {s : State} {job : Nat} {params : Params} {stop : Bool} {call : Call}
    (h : enter env s job params stop = some (some call)) :
    (∃ c x, s.db.checkpoints job = some c ∧ x.params = params ∧ 0 < x.batchSize ∧
      c.requestFingerprint = params.fingerprint ∧ c.done = false ∧ call = .running x c .start) ∨
    ∃ x, x.params = params ∧ x.nowMs = s.clock ∧ 0 < x.batchSize ∧ call = .creating x := by
  unfold enter at h
  split at h
  · cases h
  · split at h
    · split at h
      · next c x hc hx =>
        split at h
        · cases h
        · next hguard =>
          cases h
          obtain ⟨hp, _, hb⟩ := ofParams_fields hx
          refine .inl ⟨c, x, hc, hp, hb, ?_, ?_, rfl⟩
          · by_contra hne
            exact hguard (.inl hne)
          · by_contra hdone
            exact hguard (.inr (.inl (by simpa using hdone)))
      · next x hc hx =>
        split at h
        · cases h
        · cases h
          obtain ⟨hp, hn, hb⟩ := ofParams_fields hx
          exact .inr ⟨x, hp, hn, hb, rfl⟩
      · cases h
    · cases h

theorem enter_runParams {env : Env} {s : State} {job : Nat} {params : Params} {stop : Bool}
    {next : Option Call} (h : enter env s job params stop = some next) {r : Nat}
    (hr : env.jobRun job = some r) : (env.runParams r).fingerprint = params.fingerprint := by
  unfold enter at h
  split at h
  · cases h
  · split at h
    · next hall =>
      rw [hr] at hall
      exact of_decide_eq_true hall
    · cases h

end ChessCrawl.Collection
